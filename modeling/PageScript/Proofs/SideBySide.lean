import PageScript.Proofs.PrintedStatements
import PageScript.Reader.Document

/-!
# Scripts side by side

Two readers that have the same tokens ahead make the same steps, wherever the tokens stand. The
tokens may also end with a string that the end of the input cuts off, and with another one in the
other script: then both readers do the same until they come to it, and neither gets past it.
-/
namespace PageScript

namespace Step

variable {σ α β : Type} {m m' : Step σ α} {s s' : σ} {post : α → σ → α → σ → Prop}
  {fail : ScriptError → ScriptError → Prop}

/-- Two steps, each from a state of its own, end in results and states that satisfy `post`, or both
in errors that satisfy `fail`. -/
def Both (m m' : Step σ α) (s s' : σ) (post : α → σ → α → σ → Prop)
    (fail : ScriptError → ScriptError → Prop) : Prop :=
  match m.run s, m'.run s' with
  | (.ok a, q), (.ok a', q') => post a q a' q'
  | (.error e, _), (.error e', _) => fail e e'
  | _, _ => False

theorem both_of_run {a a' : α} {q q' : σ} (h : m.run s = (.ok a, q)) (h' : m'.run s' = (.ok a', q'))
    (hpost : post a q a' q') : Both m m' s s' post fail := by
  rw [Both, h, h']
  exact hpost

theorem Both.mono {post' : α → σ → α → σ → Prop} (h : Both m m' s s' post fail)
    (hp : ∀ a q a' q', post a q a' q' → post' a q a' q') : Both m m' s s' post' fail := by
  unfold Both at h ⊢
  split at h
  · exact hp _ _ _ _ h
  · exact h
  · exact h.elim

theorem Both.bind {n n' : Step σ β} {f f' : β → Step σ α} {mid : β → σ → β → σ → Prop}
    (hn : Both n n' s s' mid fail)
    (hf : ∀ b b' q q', mid b q b' q' → Both (f b) (f' b') q q' post fail) :
    Both (n >>= f) (n' >>= f') s s' post fail := by
  unfold Both at hn
  rw [Both, run_bind, run_bind]
  rcases hr : n.run s with ⟨_ | b, q⟩ <;> rcases hr' : n'.run s' with ⟨_ | b', q'⟩ <;>
    rw [hr, hr'] at hn
  · exact hn
  · exact hn.elim
  · exact hn.elim
  · exact hf b b' q q' hn

theorem both_pure {a a' : α} (h : post a s a' s') : Both (pure a) (pure a') s s' post fail := h

theorem both_throw {e e' : ScriptError} (h : fail e e') :
    Both (throw e : Step σ α) (throw e') s s' post fail := h

theorem both_get_bind {f f' : σ → Step σ α} (h : Both (f s) (f' s') s s' post fail) :
    Both (get >>= f) (get >>= f') s s' post fail := h

theorem both_modify {f f' : σ → σ} {post : PUnit → σ → PUnit → σ → Prop}
    (h : post ⟨⟩ (f s) ⟨⟩ (f' s')) : Both (modify f : Step σ PUnit) (modify f') s s' post fail := h

end Step

open Step

/-- Tokens ahead in two scripts. If `cut` holds, each script ends with a string that the end of the
input cuts off; beyond that the tokens are the same. -/
inductive TokensAgree (cut : Prop) : List (Token × Bool) → List (Token × Bool) → Prop where
  | finished (whole : ¬ cut) : TokensAgree cut [] []
  | same {ts ts' : List (Token × Bool)} (e : Token × Bool) (rest : TokensAgree cut ts ts') :
      TokensAgree cut (e :: ts) (e :: ts')
  | cutOff (h : cut) (b b' : List UInt8) : TokensAgree cut [(.string b, true)] [(.string b', true)]

namespace TokensAgree

theorem refl (ts : List (Token × Bool)) : TokensAgree False ts ts := by
  induction ts with
  | nil => exact .finished id
  | cons e ts ih => exact .same e ih

theorem concat (ts : List (Token × Bool)) (b b' : List UInt8) :
    TokensAgree True (ts ++ [(Token.string b, true)]) (ts ++ [(Token.string b', true)]) := by
  induction ts with
  | nil => exact .cutOff trivial b b'
  | cons e ts ih => exact .same e ih

/-- The next tokens are the same, and then the others agree, or they are the cut-off strings. -/
theorem nextOf {cut : Prop} {ts ts' : List (Token × Bool)} (h : TokensAgree cut ts ts') :
    (Lexer.nextOf ts = Lexer.nextOf ts' ∧ TokensAgree cut ts.tail ts'.tail) ∨
      cut ∧ ∃ b b', Lexer.nextOf ts = (.string b, true) ∧
        Lexer.nextOf ts' = (.string b', true) := by
  cases h with
  | finished whole => exact .inl ⟨rfl, .finished whole⟩
  | same e rest => exact .inl ⟨rfl, rest⟩
  | cutOff h b b' => exact .inr ⟨h, b, b', rfl, rfl⟩

end TokensAgree

/-- Two lexers of complete inputs with tokens ahead that agree. -/
structure Lexer.Beside (cut : Prop) (lx lx' : Lexer) : Prop where
  complete : lx.ending = .complete
  complete' : lx'.ending = .complete
  upcoming : TokensAgree cut lx.upcoming lx'.upcoming

namespace Lexer

variable {cut : Prop} {lx lx' : Lexer} {σ β : Type} (step : σ → Token → Bool → Except β σ)
  (atEnd : σ → β)

/-- Both lexers read the same token, or come to the strings that end the scripts. -/
theorem readSignificant_beside (h : Beside cut lx lx') :
    (∃ t q q', lx.readSignificant = (.ok t, q) ∧ lx'.readSignificant = (.ok t, q') ∧
        Beside cut q q' ∧ q.unterminated = q'.unterminated) ∨
      cut ∧ ∃ b b' q q', lx.readSignificant = (.ok (.string b), q) ∧
        lx'.readSignificant = (.ok (.string b'), q') ∧ q.unterminated = true ∧
          q'.unterminated = true := by
  obtain ⟨place, hread, hplace⟩ := readSignificant_complete h.complete
  obtain ⟨place', hread', hplace'⟩ := readSignificant_complete h.complete'
  rcases h.upcoming.nextOf with ⟨hnext, htail⟩ | ⟨hcut, b, b', hb, hb'⟩
  · rw [← hnext] at hread'
    refine .inl ⟨_, _, _, hread, hread', ⟨h.complete, h.complete', ?_⟩, rfl⟩
    change TokensAgree cut (significant _ _) (significant _ _)
    rwa [hplace, hplace']
  · rw [hb] at hread
    rw [hb'] at hread'
    exact .inr ⟨hcut, b, b', _, _, hread, hread', rfl, rfl⟩

/-- Feeds over tokens that agree stop alike. They may also come to the cut-off strings, of which the
step always has to make results. -/
theorem feedOver_agree {differ : β → β → Prop} {ts ts' : List (Token × Bool)}
    (hstop : cut → ∀ s b b', ∃ x x', step s (.string b) true = .error x ∧
      step s (.string b') true = .error x' ∧ differ x x')
    (h : TokensAgree cut ts ts') (s : σ) :
    (∃ x s' rest rest', feedOver step atEnd s ts = (x, s', rest) ∧
        feedOver step atEnd s ts' = (x, s', rest') ∧ TokensAgree cut rest rest' ∧
        (cut → ∃ s t u, step s t u = .error x)) ∨
      cut ∧ ∃ x x' s' rest rest', feedOver step atEnd s ts = (x, s', rest) ∧
        feedOver step atEnd s ts' = (x', s', rest') ∧ differ x x' := by
  induction h generalizing s with
  | finished whole =>
    exact .inl ⟨_, _, _, _, rfl, rfl, .finished whole, fun h => absurd h whole⟩
  | @same ts ts' e rest ih =>
    obtain ⟨t, u⟩ := e
    rw [feedOver, feedOver]
    cases hs : step s t u with
    | error x => exact .inl ⟨x, s, ts, ts', rfl, rfl, rest, fun _ => ⟨s, t, u, hs⟩⟩
    | ok next => exact ih next
  | cutOff h b b' =>
    obtain ⟨x, x', hx, hx', hdiffer⟩ := hstop h s b b'
    refine .inr ⟨h, x, x', s, [], [], ?_, ?_, hdiffer⟩
    · rw [feedOver, hx]
    · rw [feedOver, hx']

/-- A feed that stops before the cut-off strings has its result from a token, not from the end of the
input. -/
theorem feed_beside {differ : β → β → Prop}
    (hstop : cut → ∀ s b b', ∃ x x', step s (.string b) true = .error x ∧
      step s (.string b') true = .error x' ∧ differ x x')
    (h : Beside cut lx lx') (s : σ) :
    (∃ x s' q q', feed step atEnd s lx = (.ok x, s', q) ∧
        feed step atEnd s lx' = (.ok x, s', q') ∧ Beside cut q q' ∧
        (cut → ∃ s t u, step s t u = .error x)) ∨
      cut ∧ ∃ x x' s' q q', Lexer.feed step atEnd s lx = (.ok x, s', q) ∧
        feed step atEnd s lx' = (.ok x', s', q') ∧ differ x x' := by
  obtain ⟨place, u, hfeed, hplace, -⟩ := feed_complete step atEnd s h.complete
  obtain ⟨place', u', hfeed', hplace', -⟩ := feed_complete step atEnd s h.complete'
  rcases feedOver_agree step atEnd hstop h.upcoming s with
    ⟨x, s₁, rest, rest', hx, hx', hrest, hresult⟩ | ⟨hcut, x, x', s₁, rest, rest', hx, hx', hdiffer⟩
  · rw [hx] at hfeed hplace
    rw [hx'] at hfeed' hplace'
    refine .inl ⟨x, s₁, _, _, hfeed, hfeed', ⟨h.complete, h.complete', ?_⟩, hresult⟩
    change TokensAgree cut (significant _ _) (significant _ _)
    rw [hplace, hplace']
    exact hrest
  · rw [hx] at hfeed
    rw [hx'] at hfeed'
    exact .inr ⟨hcut, x, x', s₁, _, _, hfeed, hfeed', hdiffer⟩

end Lexer

/-- Two readers that know the same and have the same tokens ahead, up to a cut-off string. -/
structure Reader.Beside (cut : Prop) (r r' : Reader) : Prop where
  same : r' = { r with lexer := r'.lexer }
  lexer : r.lexer.Beside cut r'.lexer

/-- From readers side by side, the step ends in one result and side by side again, or in errors. The
errors are the same unless the scripts end with different strings. -/
def Reader.Together (cut : Prop) {α : Type} (m m' : Reading α) (r r' : Reader) : Prop :=
  m.Both m' r r' (fun a q a' q' => a = a' ∧ q.Beside cut q') fun e e' => cut ∨ e = e'

def Reader.Alike (cut : Prop) {α : Type} (m : Reading α) : Prop :=
  ∀ ⦃r r' : Reader⦄, r.Beside cut r' → Together cut m m r r'

namespace Reader

variable {cut : Prop} {α β : Type} {r r' : Reader}

theorem Beside.with_lexer (h : r.Beside cut r') {lx lx' : Lexer} (hlx : lx.Beside cut lx') :
    Beside cut { r with lexer := lx } { r' with lexer := lx' } := by
  refine ⟨?_, hlx⟩
  rw [h.same]

/-- Whether the last token was cut off is no part of what the readers agree on. -/
theorem Beside.flagged (h : r.Beside cut r') (u u' : Bool) :
    Beside cut { r with lexer := { r.lexer with unterminated := u } }
      { r' with lexer := { r'.lexer with unterminated := u' } } :=
  h.with_lexer ⟨h.lexer.complete, h.lexer.complete', h.lexer.upcoming⟩

theorem Together.bind {m m' : Reading β} {f : β → Reading α} (hm : Together cut m m' r r')
    (hf : ∀ b, Alike cut (f b)) : Together cut (m >>= f) (m' >>= f) r r' := by
  refine Both.bind hm ?_
  rintro b _ q q' ⟨rfl, hq⟩
  exact hf b hq

namespace Alike

theorem pure (a : α) : Alike cut (Pure.pure a) := fun _ _ h => both_pure ⟨rfl, h⟩

theorem throw (e : ScriptError) : Alike cut (MonadExcept.throw e : Reading α) :=
  fun _ _ _ => both_throw (.inr rfl)

theorem ofExcept (x : Except ScriptError α) :
    Alike cut (MonadExcept.ofExcept x : Reading α) := by
  cases x with
  | ok a => exact pure a
  | error e => exact throw e

theorem bind {m : Reading β} {f : β → Reading α} (hm : Alike cut m) (hf : ∀ b, Alike cut (f b)) :
    Alike cut (m >>= f) :=
  fun _ _ h => (hm h).bind hf

theorem map {m : Reading β} {f : β → α} (hm : Alike cut m) : Alike cut (f <$> m) := by
  rw [map_eq_pure_bind]
  exact hm.bind fun _ => pure _

/-- What a step asks of a reader may be anything but where its lexer stands. -/
theorem get_bind {f : Reader → Reading α} (hf : ∀ (r : Reader) lx, f { r with lexer := lx } = f r)
    (h : ∀ r, Alike cut (f r)) : Alike cut (get >>= f) := by
  intro r r' hr
  have hsame : f r' = f r := by
    rw [hr.same]
    exact hf r _
  refine both_get_bind ?_
  rw [hsame]
  exact h r hr

end Alike

/-- What a step changes in a reader may be anything but its lexer. -/
theorem alike_modify {f : Reader → Reader}
    (hf : ∀ (r : Reader) lx, f { r with lexer := lx } = { f r with lexer := lx })
    (hlexer : ∀ r : Reader, (f r).lexer = r.lexer) : Alike cut (modify f : Reading Unit) := by
  intro r r' h
  refine both_modify ⟨rfl, ?_, ?_⟩
  · rw [hlexer r', ← hf, ← h.same]
  · rw [hlexer, hlexer]
    exact h.lexer

/-- A string cut off by the end of the input, had it been the last token, makes the step fail. -/
def Refuses (f : Token → Reading α) : Prop :=
  ∀ b r, r.lexer.unterminated = true →
    (f (.string b)).Ensures r (fun _ _ => False) fun _ _ => True

theorem Refuses.together {f : Token → Reading α} (hf : Refuses f) {b b' : List UInt8}
    (hr : r.lexer.unterminated = true) (hr' : r'.lexer.unterminated = true) (hcut : cut) :
    Together cut (f (.string b)) (f (.string b')) r r' := by
  have hfail := hf b r hr
  have hfail' := hf b' r' hr'
  unfold Ensures at hfail hfail'
  unfold Together Both
  rcases hrun : (f (.string b)).run r with ⟨_ | a, q⟩ <;> rw [hrun] at hfail
  · rcases hrun' : (f (.string b')).run r' with ⟨_ | a', q'⟩ <;> rw [hrun'] at hfail'
    · exact Or.inl hcut
    · exact hfail'.elim
  · exact hfail.elim

theorem run_lexing {f : Lexer → Except ScriptError α × Lexer} {a : Except ScriptError α}
    {lx : Lexer} (h : f r.lexer = (a, lx)) : (lexing f).run r = (a, { r with lexer := lx }) := by
  change ((f r.lexer).1, { r with lexer := (f r.lexer).2 }) = _
  rw [h]

/-- Both readers take the same token, or come to the strings that end the scripts. -/
theorem both_token (h : r.Beside cut r') :
    token.Both token r r'
      (fun t q t' q' =>
        (t = t' ∧ q.Beside cut q' ∧ q.lexer.unterminated = q'.lexer.unterminated) ∨
          cut ∧ ∃ b b', t = .string b ∧ t' = .string b' ∧ q.lexer.unterminated = true ∧
            q'.lexer.unterminated = true)
      fun e e' => cut ∨ e = e' := by
  rcases Lexer.readSignificant_beside h.lexer with
    ⟨t, q, q', hread, hread', hq, hflag⟩ | ⟨hcut, b, b', q, q', hread, hread', hq, hq'⟩
  · exact both_of_run (run_lexing hread) (run_lexing hread') (.inl ⟨rfl, h.with_lexer hq, hflag⟩)
  · exact both_of_run (run_lexing hread) (run_lexing hread')
      (.inr ⟨hcut, b, b', rfl, rfl, hq, hq'⟩)

/-- What follows a token need only be looked at for tokens of both scripts, if it refuses strings
that are cut off. -/
theorem together_token_bind (h : r.Beside cut r') {f : Token → Reading α} (hf : ∀ t q q',
      q.Beside cut q' → q.lexer.unterminated = q'.lexer.unterminated →
      Together cut (f t) (f t) q q')
    (hrefuses : Refuses f) : Together cut (token >>= f) (token >>= f) r r' := by
  refine (both_token h).bind ?_
  rintro t t' q q' (⟨rfl, hq, hflag⟩ | ⟨hcut, b, b', rfl, rfl, hq, hq'⟩)
  · exact hf t q q' hq hflag
  · exact hrefuses.together hq hq' hcut

theorem alike_token_bind {f : Token → Reading α} (hf : ∀ t, Alike cut (f t))
    (hrefuses : Refuses f) : Alike cut (token >>= f) :=
  fun _ _ h => together_token_bind h (fun t _ _ hq _ => hf t hq) hrefuses

theorem alike_name (expected : String) : Alike cut (Reader.name expected) := by
  refine alike_token_bind (fun t => ?_) fun b r _ => trivial
  split
  · exact .pure _
  · exact .throw _

theorem alike_number (expected : String) : Alike cut (Reader.number expected) := by
  refine alike_token_bind (fun t => ?_) fun b r _ => trivial
  split
  · exact .pure _
  · exact .throw _

theorem together_terminated (h : r.Beside cut r')
    (hflag : r.lexer.unterminated = r'.lexer.unterminated) (bytes : List UInt8) :
    Together cut (terminated bytes) (terminated bytes) r r' := by
  refine both_get_bind ?_
  rw [hflag]
  split
  · exact both_throw (.inr rfl)
  · exact both_pure ⟨rfl, h⟩

/-- What the readers make of a peek may not depend on a string. -/
theorem alike_peek_bind {f : Token → Reading α} (hf : ∀ t, Alike cut (f t))
    (hstring : ∀ b b', f (.string b) = f (.string b')) : Alike cut (peek >>= f) := by
  intro r r' h
  have hpeek : peek.Both peek r r' (fun t q t' q' => f t = f t' ∧ q.Beside cut q')
      fun e e' => cut ∨ e = e' := by
    refine both_of_run (run_lexing (Lexer.peekSignificant_complete h.lexer.complete))
      (run_lexing (Lexer.peekSignificant_complete h.lexer.complete')) ⟨?_, h.flagged _ _⟩
    rcases h.lexer.upcoming.nextOf with ⟨hnext, -⟩ | ⟨-, b, b', hb, hb'⟩
    · rw [hnext]
    · rw [hb, hb']
      exact hstring b b'
  refine hpeek.bind ?_
  rintro t t' q q' ⟨ht, hq⟩
  rw [← ht]
  exact hf t hq

theorem alike_components (n : Nat) : Alike cut (components n) := by
  induction n with
  | zero => exact .pure _
  | succ n ih =>
    refine alike_peek_bind (fun t => ?_) fun _ _ => rfl
    split
    · exact (alike_number _).bind fun _ => ih.bind fun _ => .pure _
    · exact .throw _
    · exact .pure _

theorem alike_declare (name : String) : Alike cut (declare name) := by
  refine .get_bind (fun _ _ => rfl) fun r => ?_
  split
  · exact .throw _
  · exact alike_modify (fun _ _ => rfl) fun _ => rfl

theorem alike_declareVariable (name : String) (kind : ValueKind) :
    Alike cut (declareVariable name kind) := by
  refine .get_bind (fun _ _ => rfl) fun r => ?_
  split
  · exact .throw _
  · exact alike_modify (fun _ _ => rfl) fun _ => rfl

theorem alike_move (next : Context → Except ScriptError Context) : Alike cut (move next) := by
  refine .get_bind (fun _ _ => rfl) fun r => (Alike.ofExcept _).bind fun context => ?_
  exact alike_modify (fun _ _ => rfl) fun _ => rfl

/-- No place inside a value accepts a string that is cut off. -/
theorem step_cutOff (kinds : Table ValueKind) (n : Nesting) (b : List UInt8) :
    ∃ e, n.step kinds (.string b) true = .error (.error e) := by
  cases n with
  | atValue frames => exact ⟨_, rfl⟩
  | atKey entries frames => exact ⟨_, rfl⟩

theorem run_value {nesting last : Nesting} {x : Except ScriptError Value} {lx : Lexer}
    (h : Lexer.feed (Nesting.step r.kinds) (fun n => .error n.atEnd) nesting r.lexer =
      (.ok x, last, lx)) : (value nesting).run r = (x, { r with lexer := lx }) := by
  let whole : Reading (Except ScriptError Value) := lexing fun lexer =>
    ((Lexer.feed (Nesting.step r.kinds) (fun n => .error n.atEnd) nesting lexer).1,
      (Lexer.feed (Nesting.step r.kinds) (fun n => .error n.atEnd) nesting lexer).2.2)
  have hwhole : whole.run r = (.ok x, { r with lexer := lx }) := by
    apply run_lexing
    rw [h]
  change (whole >>= MonadExcept.ofExcept).run r = _
  rw [run_bind, hwhole]
  cases x <;> rfl

theorem alike_value (nesting : Nesting) : Alike cut (value nesting) := by
  intro r r' h
  have hstop : cut → ∀ (s : Nesting) b b', ∃ x x' : Except ScriptError Value,
      s.step r.kinds (.string b) true = .error x ∧ s.step r.kinds (.string b') true = .error x' ∧
        (∃ e, x = .error e) ∧ ∃ e, x' = .error e := by
    intro _ s b b'
    obtain ⟨e, he⟩ := step_cutOff r.kinds s b
    obtain ⟨e', he'⟩ := step_cutOff r.kinds s b'
    exact ⟨_, _, he, he', ⟨e, rfl⟩, e', rfl⟩
  have hkinds : r'.kinds = r.kinds := by rw [h.same]
  unfold Together Both
  rcases Lexer.feed_beside _ (fun n => .error n.atEnd) hstop h.lexer nesting with
    ⟨x, s, q, q', hx, hx', hq, -⟩ | ⟨hcut, _, _, s, q, q', hx, hx', ⟨e, rfl⟩, e', rfl⟩
  · rw [← hkinds] at hx'
    rw [run_value hx, run_value hx']
    cases x with
    | ok v => exact ⟨rfl, h.with_lexer hq⟩
    | error e => exact Or.inr rfl
  · rw [← hkinds] at hx'
    rw [run_value hx, run_value hx']
    exact Or.inl hcut

theorem alike_variableValue (type : VariableType) : Alike cut (variableValue type) := by
  intro r r' h
  refine together_token_bind h (fun t q q' hq hflag => ?_) fun b q hq => ?_
  · split
    case h_2 bytes => exact (together_terminated hq hflag bytes).bind fun _ => .pure _
    case h_6 => exact Alike.throw _ hq
    all_goals exact Alike.pure _ hq
  · cases type with
    | string => simp [terminated, hq]
    | _ => trivial

theorem alike_variableDeclaration : Alike cut variableDeclaration := by
  refine alike_token_bind (fun t => ?_) fun b r _ => trivial
  split
  case h_2 => exact .throw _
  refine (Alike.pure _).bind fun x => (alike_name _).bind fun typeName => ?_
  split
  case h_2 => exact .throw _
  next type _ =>
  exact (alike_variableValue type).bind fun v => (alike_declareVariable x type.kind).bind fun _ =>
    .pure _

theorem alike_resourceDeclaration : Alike cut resourceDeclaration := by
  refine (alike_name _).bind fun name => (alike_name _).bind fun word => ?_
  refine (Alike.ofExcept _).bind fun kind => ?_
  intro r r' h
  refine together_token_bind h (fun t q q' hq hflag => ?_) fun b q hq => ?_
  · split
    · exact ((together_terminated hq hflag _).bind fun _ => .pure _).bind fun _ =>
        (alike_declare name).bind fun _ => .pure _
    · exact Alike.throw _ hq
  · simp [terminated, hq]

theorem run_surplus (hc : r.lexer.ending = .complete) : ∃ u, surplus.run r =
    (.ok (Lexer.feedOver countNumber id 0 r.lexer.upcoming).1,
      { r with lexer := { r.lexer with unterminated := u } }) := by
  have hsaved : r.lexer.save.ending = .complete := hc
  obtain ⟨place, u, hfeed, -⟩ := Lexer.feed_complete countNumber id 0 hsaved
  have hcount := congrArg (fun x => (x.1, x.2.2.restore)) hfeed
  exact ⟨u, run_lexing hcount⟩

/-- Whatever ends the numbers ahead, both readers count as many and return to where they were. -/
theorem alike_surplus : Alike cut surplus := by
  intro r r' h
  obtain ⟨u, hu⟩ := run_surplus h.lexer.complete
  obtain ⟨u', hu'⟩ := run_surplus h.lexer.complete'
  have hstop : cut → ∀ (n : Nat) b b', ∃ k k', countNumber n (.string b) true = .error k ∧
      countNumber n (.string b') true = .error k' ∧ k = k' :=
    fun _ n b b' => ⟨0, 0, rfl, rfl, rfl⟩
  refine both_of_run hu hu' ⟨?_, h.flagged u u'⟩
  rcases Lexer.feedOver_agree countNumber id hstop h.lexer.upcoming 0 with
    ⟨k, n, rest, rest', hk, hk', -⟩ | ⟨-, k, k', n, rest, rest', hk, hk', heq⟩
  · rw [hk, hk']
  · rw [hk, hk']
    exact heq

theorem alike_colorDeclaration : Alike cut colorDeclaration := by
  refine (alike_name _).bind fun name => (alike_name _).bind fun word => ?_
  refine (Alike.ofExcept _).bind fun space => ?_
  refine (alike_components _).bind fun numbers => alike_surplus.bind fun extra => ?_
  split
  · exact (alike_declare name).bind fun _ => .pure _
  · exact .throw _

theorem alike_patternDeclaration : Alike cut patternDeclaration := by
  refine (alike_name _).bind fun name => (alike_name _).bind fun word => ?_
  refine (Alike.ofExcept _).bind fun kind => ?_
  refine (alike_name _).bind fun word => (Alike.ofExcept _).bind fun space => ?_
  refine alike_token_bind (fun t => ?_) fun b r _ => trivial
  split
  · exact (alike_value _).bind fun entries => (Alike.ofExcept _).bind fun pattern =>
      (alike_declare name).bind fun _ => .pure _
  · exact .throw _

theorem alike_pageSize : Alike cut pageSize := by
  refine alike_token_bind (fun t => ?_) fun b r _ => trivial
  split
  · split
    · exact .pure _
    · exact .throw _
  · exact (alike_number _).bind fun _ => .pure _
  · exact .throw _

theorem alike_openPage : Alike cut openPage := alike_modify (fun _ _ => rfl) fun _ => rfl

theorem alike_closePage : Alike cut closePage :=
  (alike_move _).bind fun _ => alike_modify (fun _ _ => rfl) fun _ => rfl

theorem alike_beginPage : Alike cut beginPage := by
  refine alike_pageSize.bind fun size => .get_bind (fun _ _ => rfl) fun r => ?_
  split
  · refine alike_closePage.bind fun _ => alike_openPage.bind fun _ => .bind ?_ fun _ => .pure _
    exact alike_modify (fun _ _ => rfl) fun _ => rfl
  · exact alike_openPage.bind fun _ => .pure _

theorem alike_endPage : Alike cut endPage := by
  refine .get_bind (fun _ _ => rfl) fun r => ?_
  split
  · exact alike_closePage.bind fun _ => .pure _
  · exact .throw _

theorem alike_fragment : Alike cut fragment := by
  refine alike_token_bind (fun t => ?_) fun b r _ => trivial
  split
  case h_2 => exact .throw _
  refine (Alike.pure _).bind fun word => ?_
  dsimp only
  split
  · exact alike_variableDeclaration.map
  · exact alike_resourceDeclaration.map
  · exact alike_colorDeclaration.map
  · exact alike_patternDeclaration.map
  · exact alike_beginPage
  · exact alike_endPage
  · exact .throw _

theorem alike_noOperands : Alike cut noOperands := by
  refine .get_bind (fun _ _ => rfl) fun r => ?_
  dsimp only
  split
  · exact .pure _
  · exact .throw _

theorem alike_graphics (symbol : String) : Alike cut (graphics symbol) := by
  refine (Alike.ofExcept _).bind fun op => .get_bind (fun _ _ => rfl) fun r => ?_
  refine .bind (alike_modify (fun _ _ => rfl) fun _ => rfl) fun _ => ?_
  exact (Alike.ofExcept _).bind fun o => (alike_move _).bind fun _ => .pure _

theorem Operands.step_ne_endOfInput {kinds : Table ValueKind} {run : Operands} {t : Token}
    {u : Bool} : run.step kinds t u ≠ .error .endOfInput := by
  unfold step
  split
  · nofun
  · nofun
  · nofun
  · nofun
  · split <;> nofun

/-- Outside of values, a string that is cut off ends the run of operands with an error as well. -/
theorem Operands.step_cutOff (kinds : Table ValueKind) (run : Operands) (b : List UInt8) :
    ∃ e, run.step kinds (.string b) true = .error (.error e) := by
  obtain ⟨e, he⟩ := Reader.step_cutOff kinds run.nesting b
  refine ⟨e, ?_⟩
  unfold step
  split
  iterate 4 contradiction
  rw [he]

theorem run_operands {stop : Stop} {run : Operands} {lx : Lexer}
    (h : Lexer.feed (Operands.step r.kinds) Operands.atEnd ⟨r.stack, .atValue []⟩ r.lexer =
      (.ok stop, run, lx)) :
    operands.run r = (.ok stop, { r with lexer := lx, stack := run.stack }) := by
  change ((Lexer.feed _ _ _ _).1, ({ r with lexer := _, stack := _ } : Reader)) = _
  rw [h]

/-- Both runs of operands end alike. Where a string cuts the scripts off that is no end of the input
but an error. -/
theorem both_operands (h : r.Beside cut r') :
    operands.Both operands r r'
      (fun stop q stop' q' =>
        (stop = stop' ∧ q.Beside cut q' ∧ (cut → stop ≠ .endOfInput)) ∨
          cut ∧ ∃ e e', stop = .error e ∧ stop' = .error e')
      fun e e' => cut ∨ e = e' := by
  have hstop : cut → ∀ (run : Operands) b b', ∃ x x' : Stop,
      run.step r.kinds (.string b) true = .error x ∧
        run.step r.kinds (.string b') true = .error x' ∧ ∃ e e', x = .error e ∧ x' = .error e' := by
    intro _ run b b'
    obtain ⟨e, he⟩ := Operands.step_cutOff r.kinds run b
    obtain ⟨e', he'⟩ := Operands.step_cutOff r.kinds run b'
    exact ⟨_, _, he, he', e, e', rfl, rfl⟩
  have hkinds : r'.kinds = r.kinds := by rw [h.same]
  have hstack : r'.stack = r.stack := by rw [h.same]
  rcases Lexer.feed_beside _ Operands.atEnd hstop h.lexer ⟨r.stack, .atValue []⟩ with
    ⟨stop, run, q, q', hx, hx', hq, hlast⟩ | ⟨hcut, stop, stop', run, q, q', hx, hx', hdiffer⟩
  · rw [← hkinds, ← hstack] at hx'
    refine both_of_run (run_operands hx) (run_operands hx') (.inl ⟨rfl, ⟨?_, hq⟩, fun hcut => ?_⟩)
    · rw [h.same]
    · rintro rfl
      obtain ⟨s, t, u, hs⟩ := hlast hcut
      exact Operands.step_ne_endOfInput hs
  · rw [← hkinds, ← hstack] at hx'
    exact both_of_run (run_operands hx) (run_operands hx') (.inr ⟨hcut, hdiffer⟩)

/-- A step that tells of a statement, after which the readers are side by side again. -/
theorem Alike.some {m : Reading α} (hm : Alike cut m) (h : r.Beside cut r') :
    Both (Option.some <$> m) (Option.some <$> m) r r'
      (fun s q s' q' => s = s' ∧ q.Beside cut q' ∧ (cut → s ≠ none))
      fun e e' => cut ∨ e = e' := by
  rw [map_eq_pure_bind]
  refine Both.bind (hm h) ?_
  rintro a _ q q' ⟨rfl, hq⟩
  exact both_pure ⟨rfl, hq, nofun⟩

theorem both_nextStatement (h : r.Beside cut r') :
    nextStatement.Both nextStatement r r'
      (fun s q s' q' => s = s' ∧ q.Beside cut q' ∧ (cut → s ≠ none))
      fun e e' => cut ∨ e = e' := by
  refine (both_operands h).bind ?_
  rintro stop stop' q q' (⟨rfl, hq, hstop⟩ | ⟨hcut, e, e', rfl, rfl⟩)
  · cases stop with
    | operator symbol => exact (alike_graphics symbol).some hq
    | fragment =>
      refine Both.bind (alike_noOperands hq) ?_
      rintro _ _ p p' ⟨-, hp⟩
      exact alike_fragment.some hp
    | endOfInput =>
      -- Operands run up to the end of the input only where no string cuts the scripts off.
      have whole : ¬ cut := fun hcut => hstop hcut rfl
      refine Both.mono (Together.bind (alike_noOperands hq) fun _ =>
        .get_bind (fun _ _ => rfl) fun r => ?_) fun s q s' q' ⟨hs, hq⟩ =>
          ⟨hs, hq, fun hcut => absurd hcut whole⟩
      split
      · exact alike_closePage.bind fun _ => .pure _
      · exact .pure _
    | error e => exact both_throw (.inr rfl)
  · exact both_throw (.inl hcut)

/-- Two reads from readers side by side tell of one statement, or fail. -/
theorem both_readStatement (h : r.Beside cut r') :
    (∃ s q q', r.readStatement = (.ok s, q) ∧ r'.readStatement = (.ok s, q') ∧ q.Beside cut q' ∧
        (cut → s ≠ none)) ∨
      ∃ e e' q q', r.readStatement = (.error e, q) ∧ r'.readStatement = (.error e', q') ∧
        (cut ∨ e.cause = e'.cause) := by
  have hpending : r'.pending = r.pending := by rw [h.same]
  unfold readStatement
  rw [hpending]
  cases r.pending with
  | cons s pending =>
    refine .inl ⟨some s, _, _, rfl, rfl, ⟨?_, h.lexer⟩, nofun⟩
    rw [h.same]
  | nil =>
    have hnext := both_nextStatement h
    unfold Both at hnext
    dsimp only
    split at hnext
    · next s q s' q' hs hs' =>
      obtain ⟨rfl, hq, hnone⟩ := hnext
      rw [hs, hs']
      exact .inl ⟨s, q, q', rfl, rfl, hq, hnone⟩
    · next e q e' q' he he' =>
      rw [he, he']
      exact .inr ⟨_, _, q, q', rfl, rfl, hnext⟩
    · exact hnext.elim

theorem document_of_error {q : Reader} {e : StatementError}
    (h : r.readStatement = (.error e, q)) : r.document = [.error e] := by
  rw [document]
  split
  · next he => cases he.symm.trans h
  · next he => cases he.symm.trans h
  · next e' _ he =>
    obtain rfl : e' = e := by simpa using congrArg Prod.fst (he.symm.trans h)
    rfl

/-- Readers side by side tell of the same statements. Then the scripts end, or both readers fail,
for one reason if no string is cut off. -/
theorem documents_beside (h : r.Beside cut r') : ∃ statements : List Statement,
    (¬ cut ∧ r.document = statements.map .ok ∧ r'.document = statements.map .ok) ∨
      ∃ e e', r.document = statements.map .ok ++ [Except.error e] ∧
        r'.document = statements.map .ok ++ [Except.error e'] ∧ (cut ∨ e.cause = e'.cause) := by
  fun_induction document r generalizing r' with
  | case1 r s q hr _ ih =>
    rcases both_readStatement h with ⟨t, p, p', ht, ht', hp, -⟩ | ⟨_, _, _, _, he, -⟩
    · obtain ⟨rfl, rfl⟩ : some s = t ∧ q = p := by simpa using hr.symm.trans ht
      rw [document_of_some ht']
      obtain ⟨statements, ⟨whole, hd, hd'⟩ | ⟨e, e', hd, hd', hcause⟩⟩ := ih hp
      · exact ⟨s :: statements, .inl ⟨whole, congrArg _ hd, congrArg _ hd'⟩⟩
      · exact ⟨s :: statements, .inr ⟨e, e', congrArg _ hd, congrArg _ hd', hcause⟩⟩
    · cases hr.symm.trans he
  | case2 r q hr =>
    rcases both_readStatement h with ⟨t, p, p', ht, ht', -, hnone⟩ | ⟨_, _, _, _, he, -⟩
    · obtain ⟨rfl, rfl⟩ : none = t ∧ q = p := by simpa using hr.symm.trans ht
      exact ⟨[], .inl ⟨fun hcut => hnone hcut rfl, rfl, document_of_none ht'⟩⟩
    · cases hr.symm.trans he
  | case3 r e q hr =>
    rcases both_readStatement h with ⟨_, _, _, ht, -⟩ | ⟨x, x', p, p', he, he', hcause⟩
    · cases hr.symm.trans ht
    · obtain ⟨rfl, rfl⟩ : e = x ∧ q = p := by simpa using hr.symm.trans he
      exact ⟨[], .inr ⟨e, x', rfl, document_of_error he', hcause⟩⟩

end Reader

end PageScript
