import PageScript.Proofs.PrintedPatterns
import PageScript.Proofs.PrintedValues
import PageScript.Reader.Declaration

/-!
# Declarations as they are read back

A reader that stands before the tokens of a declaration reads the declaration, and then stands
behind them.
-/
namespace PageScript

/-- The lexer stands before some tokens, up to the end of a complete input. -/
structure Lexer.Before (lx : Lexer) (ts : List Token) : Prop where
  complete : lx.ending = .complete
  upcoming : lx.upcoming = ts.map (·, false)
  terminated : lx.unterminated = false

theorem Lexer.Before.moved {lx : Lexer} {ts ts' : List Token} {place : Cursor} (h : lx.Before ts)
    (hplace : significant lx.options place.ahead = ts'.map (·, false)) :
    ({ lx with cursor := place, unterminated := false } : Lexer).Before ts' :=
  ⟨h.complete, hplace, rfl⟩

theorem Lexer.Before.feed {σ β : Type} {step : σ → Token → Bool → Except β σ} {atEnd : σ → β}
    {s last : σ} {b : β} {lx : Lexer} {ts : List Token} {rest : List (Token × Bool)}
    (h : lx.Before ts) (hover : feedOver step atEnd s (ts.map (·, false)) = (b, last, rest)) :
    ∃ place, Lexer.feed step atEnd s lx =
        (.ok b, last, { lx with cursor := place, unterminated := false }) ∧
      significant lx.options place.ahead = rest := by
  obtain ⟨place, u, hrun, hplace, hflag⟩ := feed_complete step atEnd s h.complete
  obtain rfl := hflag (by simp [h.upcoming])
  rw [h.upcoming, hover] at hrun hplace
  exact ⟨place, hrun, hplace⟩

/-- Wherever a lexer stands before some tokens, the step gives a result and leaves the lexer before
others. Of the rest of the reader it makes what it makes everywhere. -/
def Gives {α : Type} (m : Reading α) (r : Reader) (ts : List Token) (a : α) (r' : Reader)
    (ts' : List Token) : Prop :=
  ∀ lx : Lexer, lx.Before ts → ∃ lx' : Lexer, lx'.Before ts' ∧
    m.run { r with lexer := lx } = (.ok a, { r' with lexer := lx' })

namespace Gives

variable {α β : Type} {r r₁ r₂ : Reader} {ts ts₁ ts₂ : List Token} {a : α} {b : β}

protected theorem pure : Gives (pure a) r ts a r ts := fun lx h => ⟨lx, h, rfl⟩

protected theorem bind {m : Reading β} {f : β → Reading α} (hm : Gives m r ts b r₁ ts₁)
    (hf : Gives (f b) r₁ ts₁ a r₂ ts₂) : Gives (m >>= f) r ts a r₂ ts₂ := by
  intro lx h
  obtain ⟨lx₁, h₁, hrun⟩ := hm lx h
  obtain ⟨lx₂, h₂, hrun'⟩ := hf lx₁ h₁
  refine ⟨lx₂, h₂, ?_⟩
  rw [Step.run_bind, hrun]
  exact hrun'

protected theorem map {m : Reading β} {f : β → α} (hm : Gives m r ts b r₁ ts₁) :
    Gives (f <$> m) r ts (f b) r₁ ts₁ := by
  rw [map_eq_pure_bind]
  exact hm.bind .pure

/-- What a step makes of the reader that it is in. -/
theorem get_bind {f : Reader → Reading α}
    (hf : ∀ lx : Lexer, lx.Before ts → Gives (f { r with lexer := lx }) r ts a r₁ ts₁) :
    Gives (get >>= f) r ts a r₁ ts₁ := fun lx h => hf lx h lx h

protected theorem modify {f : Reader → Reader}
    (hf : ∀ lx : Lexer, f { r with lexer := lx } = { r₁ with lexer := lx }) :
    Gives (modify f) r ts ⟨⟩ r₁ ts := by
  intro lx h
  refine ⟨lx, h, ?_⟩
  rw [← hf lx]
  rfl

theorem ofExcept {x : Except ScriptError α} (h : x = .ok a) :
    Gives (MonadExcept.ofExcept x) r ts a r ts := by
  subst h
  exact .pure

theorem lexing {f : Lexer → Except ScriptError α × Lexer}
    (hf : ∀ lx : Lexer, lx.Before ts → ∃ lx' : Lexer, lx'.Before ts₁ ∧ f lx = (.ok a, lx')) :
    Gives (Reader.lexing f) r ts a r ts₁ := by
  intro lx h
  obtain ⟨lx', h', hrun⟩ := hf lx h
  have hstep : (Reader.lexing f).run { r with lexer := lx } =
      ((f lx).1, { r with lexer := (f lx).2 }) := rfl
  exact ⟨lx', h', by rw [hstep, hrun]⟩

variable {t : Token} {expected : String}

theorem token : Gives Reader.token r (t :: ts) t r ts := by
  refine lexing fun lx h => ?_
  obtain ⟨place, hread, hplace⟩ := Lexer.readSignificant_complete h.complete
  rw [h.upcoming] at hread hplace
  exact ⟨_, h.moved hplace, hread⟩

theorem peek : Gives Reader.peek r (t :: ts) t r (t :: ts) := by
  refine lexing fun lx h => ?_
  have hread := Lexer.peekSignificant_complete h.complete
  rw [h.upcoming] at hread
  exact ⟨_, h.moved h.upcoming, hread⟩

theorem name {x : String} : Gives (Reader.name expected) r (.name x :: ts) x r ts :=
  token.bind .pure

theorem number {n : Float32} : Gives (Reader.number expected) r (.number n :: ts) n r ts :=
  token.bind .pure

theorem terminated {bytes : List UInt8} : Gives (Reader.terminated bytes) r ts bytes r ts := by
  refine get_bind fun lx h => ?_
  have hend : lx.unterminated = false := h.terminated
  simp only [hend, Bool.false_eq_true, if_false]
  exact .pure

/-- A value is read as far as its tokens come to it. -/
theorem value {n : Nesting} {v : Value} {rest : List Token}
    (h : Nesting.Comes r.kinds n ts (.error (.ok v))) :
    Gives (Reader.value n) r (ts ++ rest) v r rest := by
  refine get_bind fun _ _ => ?_
  have hfeed : Gives (Reader.lexing fun lexer =>
      let fed := Lexer.feed (Nesting.step r.kinds) (fun n => .error n.atEnd) n lexer
      (fed.1, fed.2.2)) r (ts ++ rest) (.ok v) r rest := by
    refine lexing fun lx hlx => ?_
    obtain ⟨last, hover⟩ := @h.feedOver _ _ _ _ (fun n => .error n.atEnd) (rest.map (·, false))
    rw [← List.map_append] at hover
    obtain ⟨place, hrun, hplace⟩ := hlx.feed hover
    exact ⟨_, hlx.moved hplace, by rw [hrun]⟩
  exact hfeed.bind (ofExcept rfl)

theorem move {next : Context → Except ScriptError Context} {context : Context}
    (h : next r.context = .ok context) :
    Gives (Reader.move next) r ts ⟨⟩ { r with context := context } ts :=
  get_bind fun _ _ => (ofExcept h).bind (.modify fun _ => rfl)

theorem declare {x : String} (h : x ∉ r.declared) :
    Gives (Reader.declare x) r ts ⟨⟩ { r with declared := x :: r.declared } ts := by
  refine get_bind fun lx _ => ?_
  have hnew : r.declared.contains x = false := by simpa using h
  simp only [hnew, Bool.false_eq_true, if_false]
  exact .modify fun _ => rfl

theorem declareVariable {x : String} {kind : ValueKind} (h : r.kinds.contains x = false) :
    Gives (Reader.declareVariable x kind) r ts ⟨⟩ { r with kinds := r.kinds.insert x kind } ts := by
  refine get_bind fun lx _ => ?_
  simp only [h, Bool.false_eq_true, if_false]
  exact .modify fun _ => rfl

end Gives

/-- What is asked of each token ahead to count the numbers before a `#` or the end of the input. -/
def Reader.countNumber (n : Nat) (t : Token) (_ : Bool) : Except Nat Nat :=
  match t with
  | .number _ => .ok (n + 1)
  | .keyword "#" => .error n
  | _ => .error 0

/-- No numbers are left ahead that only a `#` or the end of the input follows. -/
def NoSurplus (ts : List Token) : Prop :=
  (Lexer.feedOver Reader.countNumber id 0 (ts.map (·, false))).1 = 0

section Words

variable {α : Type} [Vocabulary α]

theorem Vocabulary.ofName?_slash (word : String) :
    (ofName? ("/" ++ word) : Option α) = ofWord? word := by
  simp [ofName?, bare?]

theorem Vocabulary.ofName_slash {word : String} {a : α} (h : ofWord? word = some a) :
    ofName ("/" ++ word) = .ok a := by
  simp [ofName, bare?, ofWord, h]

theorem VariableType.ofWord?_word (type : VariableType) :
    Vocabulary.ofWord? type.kind.word = some type := by
  cases type <;> rfl

theorem ResourceKind.ofWord?_word (kind : ResourceKind) :
    Vocabulary.ofWord? kind.word = some kind := by
  cases kind <;> rfl

theorem ColorSpace.ofWord?_word (space : ColorSpace) :
    Vocabulary.ofWord? space.word = some space := by
  cases space <;> rfl

theorem PatternKind.ofWord?_word (kind : PatternKind) :
    Vocabulary.ofWord? kind.word = some kind := by
  cases kind <;> rfl

theorem PageTemplate.ofWord?_word (template : PageTemplate) :
    Vocabulary.ofWord? template.word = some template := by
  cases template <;> rfl

end Words

namespace Gives

variable {r : Reader} {rest : List Token}

theorem variableValue {type : VariableType} {v : Value} (h : type.Has v) :
    Gives (Reader.variableValue type) r (v.tokens ++ rest) v r rest := by
  cases type with
  | number | name =>
    cases v <;> first | exact h.elim | exact token.bind .pure
  | string =>
    cases v <;> first | exact h.elim | exact token.bind (terminated.bind .pure)
  | boolean =>
    cases v <;> first | exact h.elim | skip
    next b => cases b <;> exact token.bind .pure

theorem variableDeclaration {x : String} {type : VariableType} {v : Value} (h : type.Has v)
    (hnew : r.kinds.contains x = false) :
    Gives Reader.variableDeclaration r
      (.variable x :: .name ("/" ++ type.kind.word) :: (v.tokens ++ rest))
      (.variable x type.kind v) { r with kinds := r.kinds.insert x type.kind } rest := by
  refine token.bind (Gives.bind .pure (name.bind ?_))
  rw [Vocabulary.ofName?_slash, type.ofWord?_word]
  exact (variableValue h).bind ((declareVariable hnew).bind .pure)

theorem resourceDeclaration {resource : Resource} (hnew : resource.name ∉ r.declared) :
    Gives Reader.resourceDeclaration r
      (.name resource.name :: .name ("/" ++ resource.kind.word) ::
        .string (Utf8.encode resource.location) :: rest)
      (.resource resource) { r with declared := resource.name :: r.declared } rest := by
  have hkind := Vocabulary.ofName_slash resource.kind.ofWord?_word
  refine name.bind (name.bind ((ofExcept hkind).bind (token.bind (terminated.map.bind ?_))))
  rw [Utf8.decodeLossy_encode]
  exact (declare hnew).bind .pure

theorem components (numbers : List Float32) :
    Gives (Reader.components numbers.length) r (numbers.map .number ++ rest) numbers r rest := by
  induction numbers with
  | nil => exact .pure
  | cons n numbers ih => exact peek.bind (number.bind (ih.bind .pure))

theorem surplus (h : NoSurplus rest) : Gives Reader.surplus r rest 0 r rest := by
  obtain ⟨⟨n, last, behind⟩, hover⟩ : ∃ x, Lexer.feedOver Reader.countNumber id 0
    (rest.map (·, false)) = x := ⟨_, rfl⟩
  obtain rfl : n = 0 := by simpa [NoSurplus, hover] using h
  refine lexing fun lx hlx => ?_
  have hsaved : lx.save.Before rest := ⟨hlx.complete, hlx.upcoming, hlx.terminated⟩
  obtain ⟨place, hrun, -⟩ := hsaved.feed hover
  refine ⟨_, hlx.moved hlx.upcoming, ?_⟩
  have hrun' := congrArg (fun x => (x.1, x.2.2.restore)) hrun
  exact hrun'

theorem colorDeclaration {x : String} {color : Color} (hnew : x ∉ r.declared)
    (hrest : NoSurplus rest) :
    Gives Reader.colorDeclaration r
      (.name x :: .name ("/" ++ color.space.word) :: (color.components.map .number ++ rest))
      (.color x color) { r with declared := x :: r.declared } rest := by
  have hspace := Vocabulary.ofName_slash color.space.ofWord?_word
  refine name.bind (name.bind ((ofExcept hspace).bind ?_))
  rw [← color.length_components]
  refine (components _).bind ((surplus hrest).bind ?_)
  rw [Color.ofComponents?_eq_some.mpr ⟨rfl, rfl⟩]
  exact (declare hnew).bind .pure

theorem patternDeclaration {x : String} {p : Pattern} (hnew : x ∉ r.declared)
    (hcolors : ∀ stop ∈ p.stops, stop.color.space = p.space) :
    Gives Reader.patternDeclaration r
      (.name x :: .name ("/" ++ p.kind.word) :: .name ("/" ++ p.space.word) ::
        .dictionaryStart :: (Value.pairTokens p.entries ++ [.dictionaryEnd]) ++ rest)
      (.pattern x p) { r with declared := x :: r.declared } rest := by
  have hkind := Vocabulary.ofName_slash p.kind.ofWord?_word
  have hspace := Vocabulary.ofName_slash p.space.ofWord?_word
  have hentries := Nesting.comes_dictionary (p.readable_entries r.kinds)
  have hpattern := Pattern.ofDictionary_dictionary hcolors
  refine name.bind (name.bind ((ofExcept hkind).bind (name.bind ((ofExcept hspace).bind ?_))))
  refine token.bind ((value hentries).bind ((ofExcept hpattern).bind ?_))
  exact (declare hnew).bind .pure

end Gives

end PageScript
