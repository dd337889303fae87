import PageScript.Reader.Statement

/-!
# What reading a statement can do

Reading moves on in the script. Beyond that only operators, pages and declarations change a reader,
each in a way of its own.
-/
namespace PageScript

open Step

/-- A variable of the type can be declared with the value. -/
def VariableType.Has : VariableType → Value → Prop
  | number, .number _ | string, .string _ | boolean, .boolean _ | name, .name _ => True
  | _, _ => False

theorem VariableType.Has.kind_eq {type : VariableType} {v : Value} (h : type.Has v) :
    v.kind = some type.kind := by
  cases type <;> cases v <;> first | rfl | exact h.elim

namespace Declaration

/-- The declaration gives a name that is not yet taken, and to a variable a value of its type. -/
def New (kinds : Table ValueKind) (names : List String) : Declaration → Prop
  | .variable x kind v =>
    kinds.contains x = false ∧ ∃ type : VariableType, kind = type.kind ∧ type.Has v
  | d => d.name ∉ names

/-- The kinds of variables, with the one that is declared. -/
def addKind (kinds : Table ValueKind) : Declaration → Table ValueKind
  | .variable x kind _ => kinds.insert x kind
  | _ => kinds

/-- The names of resources, colours and patterns, with the one that is declared. -/
def addName (names : List String) : Declaration → List String
  | .variable .. => names
  | d => d.name :: names

end Declaration

/-- A value that is a variable has the kind under which the variable is declared, if it is. -/
def Value.Resolved (kinds : Table ValueKind) : Value → Prop
  | .variable x kind => kinds.find? x = kind
  | _ => True

theorem Nesting.eq_of_deliver {v w : Value} {frames : List Frame}
    (h : deliver v frames = .error (.ok w)) : w = v := by
  unfold deliver at h
  split at h <;> cases h
  rfl

theorem Nesting.wordValue_resolved (kinds : Table ValueKind) (text : String) :
    (wordValue text).Resolved kinds := by
  unfold wordValue
  split
  · trivial
  · split <;> trivial

/-- A whole value that is a variable has the kind of its declaration. -/
theorem Nesting.resolved_of_step {kinds : Table ValueKind} {n : Nesting} {t : Token} {u : Bool}
    {v : Value} (h : n.step kinds t u = .error (.ok v)) : v.Resolved kinds := by
  cases n with
  | atKey entries frames =>
    simp only [step, startEntry] at h
    split at h
    · rw [eq_of_deliver h]; trivial
    · cases h
    · cases h
  | atValue frames =>
    simp only [step, startValue] at h
    split at h
    case h_2 =>
      split at h
      · cases h
      · rw [eq_of_deliver h]; trivial
    case h_4 => rw [eq_of_deliver h]; exact rfl
    case h_5 => rw [eq_of_deliver h]; exact wordValue_resolved kinds _
    case h_9 =>
      split at h
      · rw [eq_of_deliver h]; trivial
      · cases h
    case h_6 | h_7 | h_8 | h_10 => cases h
    all_goals rw [eq_of_deliver h]; trivial

namespace Reader

/-- The reader has read on and is otherwise the same. -/
def ReadOn (r r' : Reader) : Prop :=
  r' = { r with lexer := r'.lexer } ∧ r'.lexer.remaining ≤ r.lexer.remaining

theorem ReadOn.refl (r : Reader) : r.ReadOn r := ⟨rfl, Nat.le_refl _⟩

theorem ReadOn.trans {r q p : Reader} (hq : r.ReadOn q) (hp : q.ReadOn p) : r.ReadOn p := by
  refine ⟨?_, Nat.le_trans hp.2 hq.2⟩
  rw [hp.1, hq.1]

instance : Std.Refl ReadOn := ⟨ReadOn.refl⟩

instance : Trans ReadOn ReadOn ReadOn := ⟨ReadOn.trans⟩

theorem keeps_lexing {α : Type} {f : Lexer → Except ScriptError α × Lexer}
    (hf : ∀ lx, (f lx).2.remaining ≤ lx.remaining) : Keeps ReadOn (lexing f) := fun r => by
  have h : r.ReadOn ((lexing f).run r).2 := ⟨rfl, hf r.lexer⟩
  unfold Ensures
  split <;> exact h

theorem keeps_token : Keeps ReadOn token := keeps_lexing Lexer.remaining_readSignificant_le

theorem keeps_peek : Keeps ReadOn peek :=
  keeps_lexing fun lx => Nat.le_of_eq lx.remaining_peekSignificant

section Tokens

variable {R : Reader → Reader → Prop} [Std.Refl R] [Trans R R R]

theorem keeps_name_of_token (htoken : Keeps R token) (expected : String) :
    Keeps R (Reader.name expected) := by
  refine htoken.bind fun t => ?_
  split
  · exact Keeps.pure
  · exact Keeps.throw

theorem keeps_number_of_token (htoken : Keeps R token) (expected : String) :
    Keeps R (Reader.number expected) := by
  refine htoken.bind fun t => ?_
  split
  · exact Keeps.pure
  · exact Keeps.throw

theorem keeps_components_of_tokens (htoken : Keeps R token) (hpeek : Keeps R peek) (n : Nat) :
    Keeps R (components n) := by
  induction n with
  | zero => exact Keeps.pure
  | succ n ih =>
    refine hpeek.bind fun t => ?_
    split
    · exact (keeps_number_of_token htoken _).bind fun _ => ih.bind fun _ => Keeps.pure
    · exact Keeps.throw
    · exact Keeps.pure

end Tokens

theorem keeps_name (expected : String) : Keeps ReadOn (Reader.name expected) :=
  keeps_name_of_token keeps_token expected

theorem keeps_number (expected : String) : Keeps ReadOn (Reader.number expected) :=
  keeps_number_of_token keeps_token expected

theorem keeps_terminated (bytes : List UInt8) : Keeps ReadOn (terminated bytes) := by
  refine Keeps.get.bind fun r => ?_
  split
  · exact Keeps.throw
  · exact Keeps.pure

theorem keeps_value (nesting : Nesting) : Keeps ReadOn (value nesting) :=
  Keeps.get.bind fun _ =>
    (keeps_lexing fun lx => Lexer.remaining_feed_le _ _ nesting lx).bind fun _ => Keeps.ofExcept

theorem keeps_components (n : Nat) : Keeps ReadOn (components n) :=
  keeps_components_of_tokens keeps_token keeps_peek n

theorem keeps_surplus : Keeps ReadOn surplus :=
  keeps_lexing fun lx => Nat.le_of_eq (Lexer.remaining_restore (Lexer.saved_feed _ _ _ lx.save))

/-- The reader with the name of a declaration in its tables. -/
def entering (r : Reader) (d : Declaration) : Reader :=
  { r with kinds := d.addKind r.kinds, declared := d.addName r.declared }

/-- The reader has read on and then entered a declaration. -/
def Entered (r : Reader) (d : Declaration) (r' : Reader) : Prop :=
  ∃ q, r.ReadOn q ∧ d.New q.kinds q.declared ∧ r' = q.entering d

theorem Entered.after {r q r' : Reader} {d : Declaration} (hq : r.ReadOn q) (h : q.Entered d r') :
    r.Entered d r' := by
  obtain ⟨p, hp, ha, he⟩ := h
  exact ⟨p, hq.trans hp, ha, he⟩

theorem ensures_declare (r : Reader) (name : String) :
    (declare name).Ensures r
      (fun _ r' => name ∉ r.declared ∧ r' = { r with declared := name :: r.declared })
      (fun _ r' => r.ReadOn r') := by
  simp only [declare, ensures_bind, ensures_get]
  split
  · exact ReadOn.refl r
  · next h => exact ⟨by simpa using h, rfl⟩

theorem ensures_declareVariable (r : Reader) (x : String) (kind : ValueKind) :
    (declareVariable x kind).Ensures r
      (fun _ r' => r.kinds.contains x = false ∧ r' = { r with kinds := r.kinds.insert x kind })
      (fun _ r' => r.ReadOn r') := by
  simp only [declareVariable, ensures_bind, ensures_get]
  split
  · exact ReadOn.refl r
  · next h => exact ⟨by simpa using h, rfl⟩

theorem Ensures.of_keeps {α β : Type} {m : Reading α} {f : α → Reading β} {r : Reader}
    {post : β → Reader → Prop} (hm : Keeps ReadOn m)
    (hf : ∀ a q, r.ReadOn q → (f a).Ensures q post fun _ r' => q.ReadOn r') :
    (m >>= f).Ensures r post fun _ r' => r.ReadOn r' :=
  ensures_bind.mpr <| (hm r).mono
    (fun a q hq => (hf a q hq).mono (fun _ _ h => h) fun _ _ h => hq.trans h) fun _ _ h => h

theorem ensures_variableValue (r : Reader) (type : VariableType) :
    (variableValue type).Ensures r (fun v r' => type.Has v ∧ r.ReadOn r')
      (fun _ r' => r.ReadOn r') := by
  unfold variableValue
  refine Ensures.of_keeps keeps_token fun t q hq => ?_
  split
  case h_2 bytes =>
    exact Ensures.of_keeps (keeps_terminated bytes) fun _ p hp => ⟨trivial, hq.trans hp⟩
  case h_6 => exact ReadOn.refl q
  all_goals exact ⟨trivial, hq⟩

theorem ensures_variableDeclaration (r : Reader) :
    variableDeclaration.Ensures r (fun d r' => r.Entered d r') fun _ r' => r.ReadOn r' := by
  refine Ensures.of_keeps keeps_token fun t q hq => ?_
  split
  case h_2 => exact ReadOn.refl q
  refine Ensures.of_keeps Keeps.pure fun x q₁ h₁ => ?_
  refine Ensures.of_keeps (keeps_name _) fun typeName q₂ h₂ => ?_
  split
  case h_2 => exact ReadOn.refl q₂
  next type _ =>
  refine ensures_bind.mpr ((ensures_variableValue q₂ type).mono ?_ fun _ _ h => h)
  rintro v q₃ ⟨hv, h₃⟩
  refine ensures_bind.mpr ((ensures_declareVariable q₃ x type.kind).mono ?_ fun _ _ h => h₃.trans h)
  rintro - _ ⟨hx, rfl⟩
  exact ⟨q₃, ((hq.trans h₁).trans h₂).trans h₃, ⟨hx, type, rfl, hv⟩, rfl⟩

/-- A declaration that comes after its name has been entered. -/
theorem ensures_declare_of {r q : Reader} (hq : r.ReadOn q) {d : Declaration} {name : String}
    (ha : name ∉ q.declared → d.New q.kinds q.declared)
    (he : { q with declared := name :: q.declared } = q.entering d) :
    (do declare name; pure d : Reading Declaration).Ensures q (fun d r' => r.Entered d r')
      fun _ r' => q.ReadOn r' := by
  refine ensures_bind.mpr ((ensures_declare q name).mono ?_ fun _ _ h => h)
  rintro - _ ⟨hn, rfl⟩
  exact ⟨q, hq, ha hn, he⟩

theorem ensures_resourceDeclaration (r : Reader) :
    resourceDeclaration.Ensures r (fun d r' => r.Entered d r') fun _ r' => r.ReadOn r' := by
  refine Ensures.of_keeps (keeps_name _) fun name q₁ h₁ => ?_
  refine Ensures.of_keeps (keeps_name _) fun kindName q₂ h₂ => ?_
  refine Ensures.of_keeps Keeps.ofExcept fun kind q₃ h₃ => ?_
  refine Ensures.of_keeps keeps_token fun t q₄ h₄ => ?_
  have h := ((h₁.trans h₂).trans h₃).trans h₄
  split
  case h_2 => exact ReadOn.refl q₄
  refine Ensures.of_keeps (keeps_terminated _).map fun location q₅ h₅ => ?_
  exact ensures_declare_of (h.trans h₅) id rfl

theorem ensures_colorDeclaration (r : Reader) :
    colorDeclaration.Ensures r (fun d r' => r.Entered d r') fun _ r' => r.ReadOn r' := by
  refine Ensures.of_keeps (keeps_name _) fun name q₁ h₁ => ?_
  refine Ensures.of_keeps (keeps_name _) fun spaceName q₂ h₂ => ?_
  refine Ensures.of_keeps Keeps.ofExcept fun space q₃ h₃ => ?_
  refine Ensures.of_keeps (keeps_components _) fun numbers q₄ h₄ => ?_
  refine Ensures.of_keeps keeps_surplus fun extra q₅ h₅ => ?_
  have h := (((h₁.trans h₂).trans h₃).trans h₄).trans h₅
  split
  · exact ensures_declare_of h id rfl
  · exact ReadOn.refl q₅

theorem ensures_patternDeclaration (r : Reader) :
    patternDeclaration.Ensures r (fun d r' => r.Entered d r') fun _ r' => r.ReadOn r' := by
  refine Ensures.of_keeps (keeps_name _) fun name q₁ h₁ => ?_
  refine Ensures.of_keeps (keeps_name _) fun kindName q₂ h₂ => ?_
  refine Ensures.of_keeps Keeps.ofExcept fun kind q₃ h₃ => ?_
  refine Ensures.of_keeps (keeps_name _) fun spaceName q₄ h₄ => ?_
  refine Ensures.of_keeps Keeps.ofExcept fun space q₅ h₅ => ?_
  refine Ensures.of_keeps keeps_token fun t q₆ h₆ => ?_
  have h := ((((h₁.trans h₂).trans h₃).trans h₄).trans h₅).trans h₆
  split
  case h_2 => exact ReadOn.refl q₆
  refine Ensures.of_keeps (keeps_value _) fun entries q₇ h₇ => ?_
  refine Ensures.of_keeps Keeps.ofExcept fun pattern q₈ h₈ => ?_
  exact ensures_declare_of ((h.trans h₇).trans h₈) id rfl

/-- The reader has read on, and its stack has lost operands or gained others whose variables have the
kinds of their declarations. -/
def Gathered (r r' : Reader) : Prop :=
  r' = { r with lexer := r'.lexer, stack := r'.stack } ∧
    r'.lexer.remaining ≤ r.lexer.remaining ∧
    ∀ v ∈ r'.stack, v ∈ r.stack ∨ v.Resolved r.kinds

theorem ReadOn.gathered {r r' : Reader} (h : r.ReadOn r') : r.Gathered r' := by
  refine ⟨?_, h.2, fun v hv => .inl ?_⟩
  · rw [h.1]
  · rw [h.1] at hv
    exact hv

theorem Gathered.trans {r q p : Reader} (hq : r.Gathered q) (hp : q.Gathered p) : r.Gathered p := by
  have hk : q.kinds = r.kinds := by rw [hq.1]
  refine ⟨by rw [hp.1, hq.1], Nat.le_trans hp.2.1 hq.2.1, fun v hv => ?_⟩
  rcases hp.2.2 v hv with h | h
  · exact hq.2.2 v h
  · exact .inr (hk ▸ h)

/-- What the next statement of the script may be, and what it leaves behind. -/
inductive Advance (r : Reader) : Option Statement → Reader → Prop where
  | declaration {q : Reader} {d : Declaration} (gathered : r.Gathered q)
      (shorter : q.lexer.remaining < r.lexer.remaining) (empty : q.stack = [])
      (new : d.New q.kinds q.declared) : r.Advance (some (.declaration d)) (q.entering d)
  | graphics {q : Reader} {o : Operation} {context : Context} (gathered : r.Gathered q)
      (shorter : q.lexer.remaining < r.lexer.remaining)
      (accepted : q.context.accept o.operator = .ok context)
      (operands : o.operands = q.stack.reverse) :
      r.Advance (some (.graphics o)) { q with stack := [], context := context }
  | page {q : Reader} {size : PageSize} (gathered : r.Gathered q)
      (shorter : q.lexer.remaining + 1 < r.lexer.remaining) (empty : q.stack = [])
      (closed : q.pageOpen = false) :
      r.Advance (some (.page size)) { q with context := .page, pageOpen := true }
  | nextPage {q : Reader} {size : PageSize} (gathered : r.Gathered q)
      (shorter : q.lexer.remaining + 1 < r.lexer.remaining) (empty : q.stack = [])
      (opened : q.pageOpen = true) (level : q.context = .page ∨ q.context = .outside) :
      r.Advance (some .endPage)
        { q with context := .page, pageOpen := true, pending := q.pending ++ [.page size] }
  | endPage {q : Reader} (gathered : r.Gathered q) (empty : q.stack = [])
      (opened : q.pageOpen = true) (level : q.context = .page ∨ q.context = .outside) :
      r.Advance (some .endPage) { q with context := .outside, pageOpen := false }
  | finish {q : Reader} (gathered : r.Gathered q) (empty : q.stack = [])
      (closed : q.pageOpen = false) : r.Advance none q

theorem ensures_token (r : Reader) :
    token.Ensures r
      (fun t q => r.ReadOn q ∧ (t ≠ .endOfInput → q.lexer.remaining < r.lexer.remaining))
      fun _ q => r.ReadOn q := by
  have h : r.ReadOn (token.run r).2 := ⟨rfl, Lexer.remaining_readSignificant_le r.lexer⟩
  unfold Ensures
  split
  · next t ht => exact ⟨h, Lexer.remaining_readSignificant_lt ht⟩
  · exact h

theorem ensures_closePage (r : Reader) :
    closePage.Ensures r
      (fun _ r' => (r.context = .page ∨ r.context = .outside) ∧
        r' = { r with context := .outside, pageOpen := false })
      fun _ r' => r.ReadOn r' := by
  simp only [closePage, move, ensures_bind, ensures_get, ensures_ofExcept, ensures_modify]
  refine ⟨fun context h => ?_, fun _ _ => ReadOn.refl r⟩
  obtain ⟨rfl, hc⟩ := Context.endPage_ok h
  exact ⟨hc, rfl⟩

theorem keeps_pageSize : Keeps ReadOn pageSize := by
  refine keeps_token.bind fun t => ?_
  split
  · split
    · exact Keeps.pure
    · exact Keeps.throw
  · exact (keeps_number _).map
  · exact Keeps.throw

theorem resolved_of_operandsStep {kinds : Table ValueKind} {run next : Operands} {t : Token}
    {u : Bool} (h : run.step kinds t u = .ok next) :
    ∀ v ∈ next.stack, v ∈ run.stack ∨ v.Resolved kinds := by
  have push {w : Value} (hw : w.Resolved kinds) :
      ∀ v ∈ w :: run.stack, v ∈ run.stack ∨ v.Resolved kinds := by
    intro v hv
    rcases List.mem_cons.mp hv with rfl | hv
    · exact .inr hw
    · exact .inl hv
  unfold Operands.step at h
  split at h
  · cases h
  · cases h; exact push trivial
  · cases h; exact push trivial
  · cases h
  · split at h
    · cases h; exact fun v hv => .inl hv
    · next hs => cases h; exact push (Nesting.resolved_of_step hs)
    · cases h

theorem ensures_operands (r : Reader) :
    operands.Ensures r
      (fun stop q => r.Gathered q ∧
        (stop = .fragment ∨ (∃ symbol, stop = .operator symbol) →
          q.lexer.remaining < r.lexer.remaining))
      fun _ q => r.Gathered q := by
  have hstack : ∀ v ∈ (operands.run r).2.stack, v ∈ r.stack ∨ v.Resolved r.kinds :=
    Lexer.feed_invariant (s := ⟨r.stack, .atValue []⟩)
      (P := fun run => ∀ v ∈ run.stack, v ∈ r.stack ∨ v.Resolved r.kinds) Operands.atEnd r.lexer
      (fun run t u next h hs v hv => (resolved_of_operandsStep hs v hv).elim (h v) .inr)
      fun v hv => .inl hv
  have h : r.Gathered (operands.run r).2 := ⟨rfl, Lexer.remaining_feed_le _ _ _ r.lexer, hstack⟩
  unfold Ensures
  split
  · next stop hs =>
    refine ⟨h, fun hstop => ?_⟩
    rcases Lexer.feed_result hs with he | ⟨-, hlt⟩
    · unfold Operands.atEnd at he
      split at he <;> simp [he] at hstop
    · exact hlt
  · exact h

theorem ensures_graphics (r : Reader) (symbol : String) :
    (graphics symbol).Ensures r
      (fun s r' => ∃ o context, s = .graphics o ∧ r.context.accept o.operator = .ok context ∧
        o.operands = r.stack.reverse ∧ r' = { r with stack := [], context := context })
      fun _ r' => r.Gathered r' := by
  simp only [graphics, move, ensures_bind, ensures_get, ensures_modify, ensures_ofExcept,
    ensures_pure]
  have hsuffix (op : Operator) : r.Gathered { r with stack := (Operation.take op r.stack).2 } :=
    ⟨rfl, Nat.le_refl _, fun v hv => .inl ((Operation.take_suffix op r.stack).subset hv)⟩
  refine ⟨fun op _ => ⟨fun o ho => ⟨fun context hc => ?_, fun _ _ => hsuffix op⟩,
    fun _ _ => hsuffix op⟩, fun _ _ => (ReadOn.refl r).gathered⟩
  obtain ⟨rfl, hs, hr⟩ := Operation.take_ok (show Operation.take op r.stack = (.ok o, _) from
    Prod.ext ho rfl)
  exact ⟨o, context, rfl, hc, hs,
    congrArg (fun stack => { r with stack := stack, context := context }) hr⟩

theorem ensures_beginPage {r q : Reader} (hq : r.Gathered q)
    (shorter : q.lexer.remaining + 1 < r.lexer.remaining) (empty : q.stack = []) :
    beginPage.Ensures q (fun s r' => r.Advance (some s) r') fun _ r' => r.Gathered r' := by
  refine ensures_bind.mpr ((keeps_pageSize q).mono ?_ fun _ _ h => hq.trans h.gathered)
  intro size p hp
  have hg : r.Gathered p := hq.trans hp.gathered
  have hs : p.stack = [] := by rw [hp.1]; exact empty
  have hl : p.lexer.remaining + 1 < r.lexer.remaining :=
    Nat.lt_of_le_of_lt (Nat.succ_le_succ hp.2) shorter
  simp only [ensures_bind, ensures_get]
  split
  · next opened =>
    refine ensures_bind.mpr ((ensures_closePage p).mono ?_ fun _ _ h => hg.trans h.gathered)
    rintro - _ ⟨level, rfl⟩
    exact Advance.nextPage (q := p) hg hl hs opened level
  · next closed => exact Advance.page (q := p) hg hl hs (by simpa using closed)

theorem ensures_endPage {r q : Reader} (hq : r.Gathered q) (empty : q.stack = []) :
    endPage.Ensures q (fun s r' => r.Advance (some s) r') fun _ r' => r.Gathered r' := by
  simp only [endPage, ensures_bind, ensures_get]
  split
  · next opened =>
    refine ensures_bind.mpr ((ensures_closePage q).mono ?_ fun _ _ h => hq.trans h.gathered)
    rintro - _ ⟨level, rfl⟩
    exact Advance.endPage (q := q) hq empty opened level
  · exact hq

theorem ensures_fragment {r q : Reader} (hq : r.Gathered q)
    (shorter : q.lexer.remaining < r.lexer.remaining) (empty : q.stack = []) :
    fragment.Ensures q (fun s r' => r.Advance (some s) r') fun _ r' => r.Gathered r' := by
  have declares {p : Reader} {m : Reading Declaration} (hp : q.ReadOn p)
      (hm : m.Ensures p (fun d r' => p.Entered d r') fun _ r' => p.ReadOn r') :
      (Statement.declaration <$> m).Ensures p (fun s r' => r.Advance (some s) r')
        fun _ r' => r.Gathered r' := by
    refine ensures_map.mpr (hm.mono ?_ fun _ _ h => hq.trans (hp.trans h).gathered)
    rintro d _ ⟨p', hp', ha, rfl⟩
    have h := hp.trans hp'
    exact .declaration (hq.trans h.gathered) (Nat.lt_of_le_of_lt h.2 shorter)
      (by rw [h.1]; exact empty) ha
  refine ensures_bind.mpr ((ensures_token q).mono ?_ fun _ _ h => hq.trans h.gathered)
  rintro t p ⟨hp, hlt⟩
  have hg := hq.trans hp.gathered
  split
  · have hl := hlt nofun
    refine ensures_bind.mpr (ensures_pure.mpr ?_)
    dsimp only
    split
    · exact declares hp (ensures_variableDeclaration p)
    · exact declares hp (ensures_resourceDeclaration p)
    · exact declares hp (ensures_colorDeclaration p)
    · exact declares hp (ensures_patternDeclaration p)
    · exact ensures_beginPage hg (by omega) (by rw [hp.1]; exact empty)
    · exact ensures_endPage hg (by rw [hp.1]; exact empty)
    · exact hg
  · exact hg

/-- The next statement is one of those described by `Advance`; an error leaves all but the stack. -/
theorem ensures_nextStatement (r : Reader) :
    nextStatement.Ensures r (fun s r' => r.Advance s r') fun _ r' => r.Gathered r' := by
  refine ensures_bind.mpr ((ensures_operands r).mono ?_ fun _ _ h => h)
  rintro stop q ⟨hq, hlt⟩
  have noOperands_then {m : Reading (Option Statement)}
      (hm : q.stack = [] → m.Ensures q (fun s r' => r.Advance s r') fun _ r' => r.Gathered r') :
      (noOperands >>= fun _ => m).Ensures q (fun s r' => r.Advance s r')
        fun _ r' => r.Gathered r' := by
    simp only [noOperands, ensures_bind, ensures_get]
    split
    · next h => exact hm (List.isEmpty_iff.mp h)
    · exact hq
  split
  · next symbol =>
    refine ensures_map.mpr ((ensures_graphics q symbol).mono ?_ fun _ _ h => hq.trans h)
    rintro _ _ ⟨o, context, rfl, accepted, operands, rfl⟩
    exact .graphics hq (hlt (.inr ⟨symbol, rfl⟩)) accepted operands
  · exact noOperands_then fun empty =>
      ensures_map.mpr (ensures_fragment hq (hlt (.inl rfl)) empty)
  · refine noOperands_then fun empty => ?_
    simp only [ensures_bind, ensures_get]
    split
    · next opened =>
      refine ensures_bind.mpr ((ensures_closePage q).mono ?_ fun _ _ h => hq.trans h.gathered)
      rintro - _ ⟨level, rfl⟩
      exact Advance.endPage (q := q) hq empty opened level
    · next closed =>
      exact ensures_pure.mpr (.finish hq empty (by simpa using closed))
  · exact hq

/-- A read gives a statement found before, or reads on to the next one. -/
theorem readStatement_cases (r : Reader) :
    (∃ s rest, r.pending = s :: rest ∧ r.readStatement = (.ok (some s), { r with pending := rest })) ∨
      r.pending = [] ∧
        ((∃ s r', r.readStatement = (.ok s, r') ∧ r.Advance s r') ∨
          ∃ e r', r.readStatement = (.error e, r') ∧ r.Gathered r') := by
  have hn := ensures_nextStatement r
  unfold readStatement
  split
  · next s rest hp => exact .inl ⟨s, rest, hp, rfl⟩
  · next hp =>
    refine .inr ⟨hp, ?_⟩
    split
    · next s r' hs => exact .inl ⟨s, r', rfl, hn.ok hs⟩
    · next e r' he => exact .inr ⟨_, r', rfl, hn.error he⟩

/-- What can still be told of: the bytes ahead, the statements found before, and the end of an open
page. -/
def outstanding (r : Reader) : Nat :=
  r.lexer.remaining + r.pending.length + r.pageOpen.toNat

theorem Advance.outstanding_lt {r r' : Reader} {s : Statement} (h : r.Advance (some s) r') :
    r'.outstanding < r.outstanding := by
  have hg {q : Reader} (hq : r.Gathered q) :
      q.pending = r.pending ∧ q.pageOpen = r.pageOpen := by
    rw [hq.1]
    exact ⟨rfl, rfl⟩
  cases h with
  | @declaration q d gathered shorter =>
    obtain ⟨hp, ho⟩ := hg gathered
    simp only [entering, outstanding, hp, ho]
    omega
  | graphics gathered shorter =>
    obtain ⟨hp, ho⟩ := hg gathered
    simp only [outstanding, hp, ho]
    omega
  | page gathered shorter _ closed =>
    obtain ⟨hp, ho⟩ := hg gathered
    simp only [outstanding, hp, ← ho, closed, Bool.toNat_true, Bool.toNat_false]
    omega
  | nextPage gathered shorter _ opened =>
    obtain ⟨hp, ho⟩ := hg gathered
    simp only [outstanding, hp, ← ho, opened, List.length_append, List.length_singleton]
    omega
  | endPage gathered _ opened =>
    have := gathered.2.1
    obtain ⟨hp, ho⟩ := hg gathered
    simp only [outstanding, hp, ← ho, opened, Bool.toNat_true, Bool.toNat_false]
    omega

theorem outstanding_readStatement_lt {r r' : Reader} {s : Statement}
    (h : r.readStatement = (.ok (some s), r')) : r'.outstanding < r.outstanding := by
  rcases r.readStatement_cases with ⟨_, rest, hp, he⟩ | ⟨-, ⟨_, q, he, ha⟩ | ⟨_, q, he, -⟩⟩
  · cases he.symm.trans h
    simp only [outstanding, hp, List.length_cons]
    omega
  · cases he.symm.trans h
    exact ha.outstanding_lt
  · cases he.symm.trans h

end Reader

end PageScript
